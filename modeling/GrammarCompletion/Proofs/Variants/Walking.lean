/-
# Walks over variants of a model

A walk takes the same way over two models if their rules have bodies that match alike, whatever the
tokens are that it offers on the way.  `Session.Companion` lists what has to be checked of a session
and another model: how their bodies correspond, and that their candidates stay related as `D` says
whenever a token, a token set or a rule is offered.  Then the walk over the other model tracks the
one over the first (`Companion.matchRule`): it uses the same fuel, is inside the same rules and
remembers the same results.

Bodies correspond if they are the same, or if a token set has been unfolded into one sequence for
each of its tokens (`RuleBody.Unfolds`).  The token set is matched at once and collected from
without entering the rule, the sequences one after the other and inside the rule.  That makes no
difference, except where no further rule may lie inside the others: `E` excuses the error that is
reported then.
-/
import GrammarCompletion.Proofs.Offers.Candidates
import GrammarCompletion.Proofs.Offers.Tallies
import GrammarCompletion.Proofs.Variants.Models
import GrammarCompletion.Proofs.Variants.Tracking
import GrammarCompletion.Proofs.Walk.Mirror
import GrammarCompletion.Proofs.Walk.Visiting

namespace GrammarCompletion

open Walk

/-! ## Bodies -/

/-- Bodies that match alike: the same one, or a token set without the end of the input and, for
each of its tokens and in any order, a sequence with a single node, which is required and not
repeated. -/
inductive RuleBody.Unfolds : RuleBody RuleId → RuleBody RuleId → Prop
  | refl (body : RuleBody RuleId) : Unfolds body body
  | tokens {tokens : OrderedSet TokenId} {list : List (Sequence RuleId)} {l : List TokenId}
      (heof : .eof ∉ tokens) (hl : tokens.toList.Perm l)
      (hlist : list.map Sequence.nodes = l.map fun t => [Node.token t .one]) :
      Unfolds (.tokenSet tokens) (.sequences list)

/-! ## Candidates -/

namespace Candidates

/-- The candidates after the offer of a token, unless the model never offers it. -/
def propose (m : Model) (t : TokenId) (k : List TokenId) (c : Candidates) : Candidates :=
  if m.isIgnoredToken t then c else c.offerToken t k

/-- The candidates after the offers of single tokens. -/
def proposeAll (m : Model) (l : List TokenId) (c : Candidates) : Candidates :=
  l.foldl (fun c t => c.propose m t []) c

variable {m : Model} {c : Candidates} {t u : TokenId} {k l : List TokenId}

lemma rules_propose : (c.propose m t k).rules = c.rules := by
  rw [propose]
  split
  · rfl
  · exact rules_offerToken

lemma rules_proposeAll : (c.proposeAll m l).rules = c.rules := by
  induction l generalizing c with
  | nil => rfl
  | cons t l ih => rw [proposeAll, List.foldl_cons, ← proposeAll, ih, rules_propose]

lemma mem_leads_propose :
    u ∈ (c.propose m t k).leads ↔ u = t ∧ m.isIgnoredToken t = false ∨ u ∈ c.leads := by
  rw [propose]
  cases ht : m.isIgnoredToken t with
  | true => simp
  | false => simp [mem_leads_offerToken]

/-- After single tokens were offered, nothing is left of what was known to follow them. -/
lemma get?_phrases_proposeAll : (c.proposeAll m l).phrases.get? u =
    if u ∈ l ∧ m.isIgnoredToken u = false then some [] else c.phrases.get? u := by
  induction l generalizing c with
  | nil => simp [proposeAll]
  | cons t l ih =>
    rw [proposeAll, List.foldl_cons, ← proposeAll, ih]
    cases ht : m.isIgnoredToken t with
    | true =>
      have hsame : c.propose m t [] = c := if_pos ht
      have hmem : u ∈ t :: l ∧ m.isIgnoredToken u = false ↔ u ∈ l ∧ m.isIgnoredToken u = false := by
        grind
      rw [hsame]
      simp only [hmem]
    | false =>
      have hoffer : c.propose m t [] = c.offerToken t [] := if_neg (by simp [ht])
      rw [hoffer, get?_phrases_offerToken]
      by_cases hu : u = t
      · subst hu
        cases c.phrases.get? u with
        | none => simp [ht]
        | some known => simp [ht]
      · simp [hu]

lemma mem_leads_proposeAll :
    u ∈ (c.proposeAll m l).leads ↔ u ∈ l ∧ m.isIgnoredToken u = false ∨ u ∈ c.leads := by
  rw [mem_leads_iff, mem_leads_iff, get?_phrases_proposeAll]
  by_cases hu : u ∈ l ∧ m.isIgnoredToken u = false
  · simp [hu]
  · rw [if_neg hu, or_iff_right hu]

end Candidates

/-! ## Runs -/

/-- Two runs that differ in the events only, and in the candidates as `D` says. -/
structure Run.Beside (D : Candidates → Candidates → Prop) (r r' : Run) : Prop where
  fuel : r'.fuel = r.fuel
  frames : r'.frames = r.frames
  collecting : r'.collecting = r.collecting
  memo : r'.memo = r.memo
  candidates : D r.candidates r'.candidates

namespace Session

/-- A completion of a session, with the candidates that its walk ended with. -/
def EndsWith (s : Session) (name : String) (k : Candidates) (c : Completion) : Prop :=
  s.complete name = .ok c ∧ ∃ root o r, s.model.ruleId? name = some root ∧ s.walk root = .ok o r ∧
    r.candidates = k

/-- The texts of a completion are those of the candidates. -/
lemma EndsWith.render {s : Session} {name : String} {k : Candidates} {c : Completion}
    (h : s.EndsWith name k c) : k.render s.model = .ok c.candidates := by
  obtain ⟨hc, root, o, r, hroot, hw, rfl⟩ := h
  rw [complete_of_root hroot, hw] at hc
  exact (completion_eq_ok hc).1

/-- A model over which the walks of a session are tracked, with candidates that are related by `D`
and errors that are excused by `E`. -/
structure Companion (s : Session) (m' : Model) (D : Candidates → Candidates → Prop)
    (E : CompletionError → Prop) : Prop where
  resembles : s.model.Resembles RuleBody.Unfolds m'
  limit : ∀ {r tokens list}, s.model.body r = .ok (.tokenSet tokens) →
    m'.body r = .ok (.sequences list) → E (.recursionLimit s.limits.depth)
  empty : D ∅ ∅
  token : ∀ {c c'} t n rest, D c c' → D (c.propose s.model t (s.model.continuation n rest))
    (c'.propose m' t (m'.continuation n rest))
  tokens : ∀ {c c'} {l l' : List TokenId}, l.Perm l' → D c c' →
    D (c.proposeAll s.model l) (c'.proposeAll m' l')
  rule : ∀ {c c'} r, D c c' → D (c.offerRule r) (c'.offerRule r)

/-! ## Sequences of single tokens -/

/-- The comparison of single tokens that are tried one after the other at a position. -/
def tallyTokens (s : Session) (p : Nat) (l : List TokenId) (tally : Tally) : Tally :=
  l.foldl (fun t u => t.add (s.matchTokenSet (.singleton u) p)) tally

section

variable {s : Session} {matchRule : RuleId → Nat → Walk Outcome} {collect : RuleId → Walk Phase}
  {t : TokenId} {p : Nat}

lemma offer_eq (s : Session) (t : TokenId) (k : List TokenId) (r : Run) : ∃ l, s.offer t k r =
    .ok () { r with candidates := r.candidates.propose s.model t k, events := l } := by
  simp only [offer, Candidates.propose]
  cases s.model.isIgnoredToken t with
  | true => exact ⟨r.events, rfl⟩
  | false => exact ⟨.offerToken t k :: r.events, rfl⟩

lemma collectTokens_eq (s : Session) (tokens : List TokenId) (r : Run) :
    ∃ l, s.collectTokens tokens r = .ok .matching
      { r with candidates := r.candidates.proposeAll s.model tokens, events := l } := by
  induction tokens generalizing r with
  | nil => exact ⟨r.events, rfl⟩
  | cons t rest ih =>
    obtain ⟨l, hl⟩ := s.offer_eq t [] r
    obtain ⟨l', hl'⟩ := ih { r with candidates := r.candidates.propose s.model t [], events := l }
    exact ⟨l', by
      simp only [collectTokens, Bind.bind, EStateM.bind, hl, hl', Candidates.proposeAll,
        List.foldl_cons]⟩

/-- Collecting from single tokens is collecting from a token set. -/
lemma collectSequences_single {l : List TokenId} (heof : .eof ∉ l) {list : List (Sequence RuleId)}
    (hlist : list.map Sequence.nodes = l.map fun t => [Node.token t .one]) :
    s.collectSequences collect list = s.collectTokens l := by
  induction l generalizing list with
  | nil =>
    obtain rfl : list = [] := List.map_eq_nil_iff.1 hlist
    rfl
  | cons t l ih =>
    obtain ⟨q, rest, rfl, hq, hrest⟩ := List.map_eq_cons_iff.1 hlist
    rw [List.mem_cons, not_or] at heof
    have hnode : s.collectNodes collect [Node.token t .one] =
        s.offer t [] >>= fun _ => pure .matching := by
      simp [collectNodes, Node.token, Ne.symm heof.1, Node.isRequired, Cardinality.one,
        Model.continuation, Model.mandatoryTokens]
    rw [collectSequences, collectTokens, hq, hnode, ih heof.2 hrest]
    simp [Phase.or]

/-- Matching a single token is matching a token set with one member. -/
lemma silent_matchNodes_single :
    Silent (s.matchNodes matchRule collect [Node.token t .one] p)
      (s.matchTokenSet (.singleton t) p) := by
  have hnode : s.matchNode matchRule (Node.token t .one) p = pure (s.matchToken false t p) := rfl
  by_cases ht : s.stream.kind p = t
  · have htoken : s.matchToken false t p = ⟨true, s.stream.advance p, .matching⟩ := by
      simp [matchToken, ht]
    rw [matchTokenSet, if_pos (OrderedSet.mem_singleton.2 ht), matchNodes, hnode, htoken, pure_bind]
    cases hq : s.reached (s.stream.advance p) with
    | true =>
      -- the end of the sequence is reached, and nothing is left to collect from
      simp only [reduceCtorEq, if_false, Bool.not_true, Bool.false_eq_true, hq, if_true]
      exact .bind (.bind (.emit _) (.pure Phase.pending)) (.pure _)
    | false =>
      simp only [reduceCtorEq, if_false, Bool.not_true, Bool.false_eq_true, hq]
      exact .pure _
  · have htoken : s.matchToken false t p = ⟨false, p, .matching⟩ := by simp [matchToken, ht]
    rw [matchTokenSet, if_neg (fun h => ht (OrderedSet.mem_singleton.1 h)), matchNodes, hnode,
      htoken, pure_bind]
    exact .pure _

/-- Among single tokens, only the one at the position counts, however often it is tried. -/
lemma tallyTokens_eq (l : List TokenId) (tally : Tally) : s.tallyTokens p l tally =
    if s.stream.kind p ∈ l then tally.add (s.matchTokenSet (.singleton (s.stream.kind p)) p)
    else tally := by
  induction l generalizing tally with
  | nil => rfl
  | cons u l ih =>
    rw [tallyTokens, List.foldl_cons, ← tallyTokens, ih]
    by_cases hu : s.stream.kind p = u
    · subst hu
      simp [Tally.add_add_self]
    · have hnot : s.matchTokenSet (.singleton u) p = ⟨false, p, .matching⟩ :=
        if_neg fun h => hu (OrderedSet.mem_singleton.1 h)
      have hskip : tally.add (s.matchTokenSet (.singleton u) p) = tally := by
        rw [hnot]
        exact Tally.add_of_not_isUsable rfl
      rw [hskip]
      simp [hu]

/-- The tokens of a set, in any order, are compared to what the set is matched to. -/
lemma outcome_tallyTokens {l : List TokenId} {tokens : OrderedSet TokenId}
    (hl : ∀ u, u ∈ tokens ↔ u ∈ l) :
    (s.tallyTokens p l {}).outcome p = s.matchTokenSet tokens p := by
  rw [tallyTokens_eq]
  by_cases hmem : s.stream.kind p ∈ l
  · have hsame : s.matchTokenSet (.singleton (s.stream.kind p)) p = s.matchTokenSet tokens p := by
      rw [matchTokenSet, if_pos (OrderedSet.mem_singleton.2 rfl), matchTokenSet,
        if_pos ((hl _).2 hmem)]
    rw [if_pos hmem, hsame, matchTokenSet, if_pos ((hl _).2 hmem)]
    exact Tally.outcome_single fun hu => by simp [Outcome.isUsable] at hu
  · rw [if_neg hmem, matchTokenSet, if_neg fun h => hmem ((hl _).1 h)]
    rfl

/-- Matching sequences of single tokens is comparing the tokens. -/
lemma silent_matchSequences_single {l : List TokenId} {list : List (Sequence RuleId)}
    (hlist : list.map Sequence.nodes = l.map fun t => [Node.token t .one]) (i : Nat)
    (tally : Tally) :
    Silent (s.matchSequences matchRule collect p i tally list) (s.tallyTokens p l tally) := by
  induction l generalizing list i tally with
  | nil =>
    obtain rfl : list = [] := List.map_eq_nil_iff.1 hlist
    exact .pure _
  | cons t l ih =>
    obtain ⟨q, rest, rfl, hq, hrest⟩ := List.map_eq_cons_iff.1 hlist
    rw [matchSequences, hq]
    exact silent_matchNodes_single.bind ((Silent.emit _).bind (ih hrest _ _))

end

namespace Companion

variable {s : Session} {m' : Model} {D : Candidates → Candidates → Prop}
  {E : CompletionError → Prop} {visit visit' : RuleId → Nat → Walk Outcome}
  {collect collect' : RuleId → Walk Phase}

/-! ## Collecting -/

lemma emit (e e' : Event) : Tracks E (Run.Beside D) (Walk.emit e) (Walk.emit e') :=
  .modify fun _ _ hr => ⟨hr.fuel, hr.frames, hr.collecting, hr.memo, hr.candidates⟩

lemma burn (limit : Nat) : Tracks E (Run.Beside D) (Walk.burn limit) (Walk.burn limit) := by
  refine .get fun r r' hr => ?_
  rw [hr.fuel]
  cases r.fuel with
  | zero => exact .throw _
  | succ n => exact .modify fun r r' hr => ⟨rfl, hr.frames, hr.collecting, hr.memo, hr.candidates⟩

/-- A rule without a body ends both walks, and otherwise the bodies correspond. -/
lemma body (h : s.Companion m' D E) {α : Type} {f f' : RuleBody RuleId → Walk α} (r : RuleId)
    (hf : ∀ b b', s.model.body r = .ok b → m'.body r = .ok b' → b.Unfolds b' →
      Tracks E (Run.Beside D) (f b) (f' b')) :
    Tracks E (Run.Beside D) (Walk.ofExcept (s.model.body r) >>= f)
      (Walk.ofExcept ((s.withModel m').model.body r) >>= f') := by
  have hmodel : (s.withModel m').model = m' := rfl
  rw [hmodel]
  rcases h.resembles.body r with ⟨b, b', hb, hb', hrel⟩ | ⟨e, hb, hb'⟩
  · rw [hb, hb']
    exact hf b b' hb hb' hrel
  · rw [hb, hb']
    exact .throw _

lemma offer (h : s.Companion m' D E) (t : TokenId) (n : Node RuleId) (rest : List (Node RuleId)) :
    Tracks E (Run.Beside D) (s.offer t (s.model.continuation n rest))
      ((s.withModel m').offer t (m'.continuation n rest)) := by
  intro r r' hr
  obtain ⟨l, hl⟩ := s.offer_eq t (s.model.continuation n rest) r
  obtain ⟨l', hl'⟩ := (s.withModel m').offer_eq t (m'.continuation n rest) r'
  rw [hl, hl']
  exact ⟨rfl, hr.fuel, hr.frames, hr.collecting, hr.memo, h.token t n rest hr.candidates⟩

lemma collectTokens (h : s.Companion m' D E) {l l' : List TokenId} (hl : l.Perm l') :
    Tracks E (Run.Beside D) (s.collectTokens l) ((s.withModel m').collectTokens l') := by
  intro r r' hr
  obtain ⟨e, he⟩ := s.collectTokens_eq l r
  obtain ⟨e', he'⟩ := (s.withModel m').collectTokens_eq l' r'
  rw [he, he']
  exact ⟨rfl, hr.fuel, hr.frames, hr.collecting, hr.memo, h.tokens hl hr.candidates⟩

lemma collectNodes (h : s.Companion m' D E)
    (hcollect : ∀ r, Tracks E (Run.Beside D) (collect r) (collect' r))
    (nodes : List (Node RuleId)) :
    Tracks E (Run.Beside D) (s.collectNodes collect nodes)
      ((s.withModel m').collectNodes collect' nodes) := by
  induction nodes with
  | nil => exact .pure _
  | cons n rest ih =>
    rw [Session.collectNodes, Session.collectNodes]
    cases n.symbol with
    | token t =>
      have hrest : Tracks E (Run.Beside D)
          (if n.isRequired then pure .matching else s.collectNodes collect rest)
          (if n.isRequired then pure .matching else (s.withModel m').collectNodes collect' rest) :=
        .ite (fun _ => .pure _) fun _ => ih
      refine .ite (fun _ => .pure _) fun _ => ?_
      exact .ite (fun _ => (h.offer t n rest).bind fun _ => hrest) fun _ => hrest
    | rule r => exact (hcollect r).bind fun ph => .ite (fun _ => .pure _) fun _ => ih

lemma collectSequences (h : s.Companion m' D E)
    (hcollect : ∀ r, Tracks E (Run.Beside D) (collect r) (collect' r))
    (list : List (Sequence RuleId)) :
    Tracks E (Run.Beside D) (s.collectSequences collect list)
      ((s.withModel m').collectSequences collect' list) := by
  induction list with
  | nil => exact .pure _
  | cons q rest ih =>
    exact (h.collectNodes hcollect q.nodes).bind fun ph => ih.bind fun others => .pure _

/-- Tokens that are collected from inside a rule, and outside of any. -/
lemma collectTokens_inside (h : s.Companion m' D E) {l l' : List TokenId} (hl : l.Perm l')
    (r : RuleId) : Tracks E (Run.Beside D) (s.collectTokens l) (do
      modify fun run => { run with collecting := r :: run.collecting }
      let ph ← (s.withModel m').collectTokens l'
      modify fun run => { run with collecting := run.collecting.tail }
      return ph) := by
  intro run run' hr
  obtain ⟨e, he⟩ := s.collectTokens_eq l run
  obtain ⟨e', he'⟩ := (s.withModel m').collectTokens_eq l'
    { run' with collecting := r :: run'.collecting }
  simp only [Bind.bind, EStateM.bind, modify, modifyGet, MonadStateOf.modifyGet, EStateM.modifyGet,
    he, he']
  exact ⟨rfl, hr.fuel, hr.frames, hr.collecting, hr.memo, h.tokens hl hr.candidates⟩

/-- Collecting from a rule offers the same, and ends in the same phase. -/
lemma collectRule (h : s.Companion m' D E) (d : Nat) (rule : RuleId) :
    Tracks E (Run.Beside D) (s.collectRule d rule) ((s.withModel m').collectRule d rule) := by
  induction d using Nat.strong_induction_on generalizing rule with
  | _ d ih =>
    have hspecial : (s.withModel m').model.isSpecial rule = s.model.isSpecial rule :=
      h.resembles.isSpecial rule
    have hignored : (s.withModel m').model.isIgnored rule = s.model.isIgnored rule :=
      h.resembles.isIgnored rule
    rw [Session.collectRule.eq_def, Session.collectRule.eq_def]
    simp only [hspecial, hignored]
    refine (burn _).bind fun _ => (emit _ _).bind fun _ => .ite (fun _ => ?_) fun _ => ?_
    · refine ((emit _ _).bind fun _ => .modify fun r r' hr => ?_).bind fun _ => .pure _
      exact ⟨hr.fuel, hr.frames, hr.collecting, hr.memo, h.rule rule hr.candidates⟩
    refine .get fun r r' hr => ?_
    rw [hr.collecting]
    refine .ite (fun _ => .pure _) fun _ => ?_
    refine h.body rule fun b b' hb hb' hrel => ?_
    cases hrel with
    | refl =>
      cases b with
      | tokenSet tokens => exact h.collectTokens (.refl _)
      | sequences list =>
        cases d with
        | zero => exact .throw _
        | succ d =>
          refine .bind (.modify fun r r' hr => ?_) fun _ => ?_
          · exact ⟨hr.fuel, hr.frames, by rw [hr.collecting], hr.memo, hr.candidates⟩
          refine (h.collectSequences (ih d (Nat.lt_succ_self d)) list).bind fun ph => ?_
          refine .bind (.modify fun r r' hr => ?_) fun _ => .pure _
          exact ⟨hr.fuel, hr.frames, by rw [hr.collecting], hr.memo, hr.candidates⟩
    | @tokens tokens list l heof hl hlist =>
      cases d with
      | zero => exact .excused (h.limit hb hb')
      | succ d =>
        have heof' : TokenId.eof ∉ l := fun hmem => heof (hl.mem_iff.2 hmem)
        simp only [collectSequences_single heof' hlist]
        exact h.collectTokens_inside hl rule

/-! ## Matching -/

lemma matchNode (hrule : ∀ r q, Tracks E (Run.Beside D) (visit r q) (visit' r q))
    (n : Node RuleId) (p : Nat) :
    Tracks E (Run.Beside D) (s.matchNode visit n p)
      ((s.withModel m').matchNode visit' n p) := by
  rw [Session.matchNode, Session.matchNode]
  cases n.symbol with
  | token t => exact .pure _
  | rule r => exact hrule r p

lemma collectAfterRepeat (h : s.Companion m' D E)
    (hcollect : ∀ r, Tracks E (Run.Beside D) (collect r) (collect' r)) (n : Node RuleId)
    (rest : List (Node RuleId)) : Tracks E (Run.Beside D) (s.collectAfterRepeat collect n rest)
      ((s.withModel m').collectAfterRepeat collect' n rest) :=
  (h.collectNodes hcollect _).bind fun _ =>
    .ite (fun _ => h.collectNodes hcollect rest) fun _ => .pure _

lemma collectBehind (h : s.Companion m' D E)
    (hcollect : ∀ r, Tracks E (Run.Beside D) (collect r) (collect' r)) (n : Node RuleId)
    (rest : List (Node RuleId)) : Tracks E (Run.Beside D) (s.collectBehind collect n rest)
      ((s.withModel m').collectBehind collect' n rest) := by
  have hrest := h.collectNodes hcollect rest
  refine .ite (fun _ => ?_) fun _ => hrest
  exact ((h.collectNodes hcollect (n :: rest)).bind fun _ => .pure _).bind fun _ => hrest

lemma collectAtCaret (h : s.Companion m' D E)
    (hcollect : ∀ r, Tracks E (Run.Beside D) (collect r) (collect' r)) (n : Node RuleId)
    (rest : List (Node RuleId)) (p : Nat) :
    Tracks E (Run.Beside D) (s.collectAtCaret collect n rest p)
      ((s.withModel m').collectAtCaret collect' n rest p) :=
  (emit _ _).bind fun _ => .ite (fun _ => h.collectAfterRepeat hcollect n rest)
    fun _ => h.collectNodes hcollect rest

lemma matchRepeats (h : s.Companion m' D E)
    (hrule : ∀ r q, Tracks E (Run.Beside D) (visit r q) (visit' r q))
    (hcollect : ∀ r, Tracks E (Run.Beside D) (collect r) (collect' r)) (n : Node RuleId)
    (rest : List (Node RuleId)) (count p : Nat) :
    Tracks E (Run.Beside D) (s.matchRepeats visit collect n rest count p)
      ((s.withModel m').matchRepeats visit' collect' n rest count p) := by
  induction count generalizing p with
  | zero => exact .pure _
  | succ count ih =>
    rw [Session.matchRepeats, Session.matchRepeats]
    refine .ite (fun _ => .pure _) fun _ => (matchNode hrule n p).bind fun o => ?_
    refine .ite (fun _ => (h.collectBehind hcollect n rest).bind fun _ => .pure _) fun _ => ?_
    refine .ite (fun _ => .pure _) fun _ => ?_
    refine .ite (fun _ => (h.collectAtCaret hcollect n rest o.stop).bind fun _ => .pure _)
      fun _ => ?_
    exact .ite (fun _ => .pure _) fun _ => ih o.stop

lemma matchNodes (h : s.Companion m' D E)
    (hrule : ∀ r q, Tracks E (Run.Beside D) (visit r q) (visit' r q))
    (hcollect : ∀ r, Tracks E (Run.Beside D) (collect r) (collect' r))
    (nodes : List (Node RuleId)) (p : Nat) :
    Tracks E (Run.Beside D) (s.matchNodes visit collect nodes p)
      ((s.withModel m').matchNodes visit' collect' nodes p) := by
  induction nodes generalizing p with
  | nil => exact .pure _
  | cons n rest ih =>
    rw [Session.matchNodes, Session.matchNodes]
    refine (matchNode hrule n p).bind fun o => ?_
    refine .ite (fun _ => (h.collectBehind hcollect n rest).bind fun _ => .pure _) fun _ => ?_
    refine .ite (fun _ => .ite (fun _ => .pure _) fun _ => ih o.stop) fun _ => ?_
    refine .ite (fun _ => (h.collectAtCaret hcollect n rest o.stop).bind fun _ => .pure _)
      fun _ => ?_
    refine .ite (fun _ => ?_) fun _ => ih o.stop
    refine (h.matchRepeats hrule hcollect n rest _ o.stop).bind fun c => ?_
    cases c with
    | finished o => exact .pure o
    | next q => exact ih q

lemma matchSequences (h : s.Companion m' D E)
    (hrule : ∀ r q, Tracks E (Run.Beside D) (visit r q) (visit' r q))
    (hcollect : ∀ r, Tracks E (Run.Beside D) (collect r) (collect' r))
    (list : List (Sequence RuleId)) (p i : Nat) (t : Tally) :
    Tracks E (Run.Beside D) (s.matchSequences visit collect p i t list)
      ((s.withModel m').matchSequences visit' collect' p i t list) := by
  induction list generalizing i t with
  | nil => exact .pure _
  | cons q rest ih =>
    exact (h.matchNodes hrule hcollect q.nodes p).bind fun o => (emit _ _).bind fun _ => ih _ _

/-- A body is matched to the same, if the rules inside it are. -/
lemma matchBody (h : s.Companion m' D E)
    (hrule : ∀ r q, Tracks E (Run.Beside D) (visit r q) (visit' r q))
    (hcollect : ∀ r, Tracks E (Run.Beside D) (collect r) (collect' r)) (a : Spot) :
    Tracks E (Run.Beside D) (s.matchBody visit collect a)
      ((s.withModel m').matchBody visit' collect' a) := by
  rw [Session.matchBody, Session.matchBody]
  refine h.body a.rule fun b b' _ _ hrel => ?_
  cases hrel with
  | refl =>
    cases b with
    | tokenSet tokens => exact .pure _
    | sequences list =>
      exact (h.matchSequences hrule hcollect list a.start 0 {}).bind fun _ => .pure _
  | @tokens tokens list l heof hl hlist =>
    -- the sequences are tried one after the other, which leaves nothing but events behind
    have hmem : ∀ u, u ∈ tokens ↔ u ∈ l := fun u => hl.mem_iff
    have hsilent : Silent (do
        let t ← (s.withModel m').matchSequences visit' collect' a.start 0 {} list
        return t.outcome a.start) (s.matchTokenSet tokens a.start) := by
      refine (silent_matchSequences_single hlist 0 {}).bind ?_
      rw [outcome_tallyTokens hmem]
      exact .pure _
    exact .of_silent (fun l hr => ⟨hr.fuel, hr.frames, hr.collecting, hr.memo, hr.candidates⟩)
      hsilent

lemma markRecursion (a : Spot) :
    Tracks E (Run.Beside D) (Session.markRecursion a) (Session.markRecursion a) :=
  .modify fun _ _ hr =>
    ⟨hr.fuel, by simp only [hr.frames], hr.collecting, hr.memo, hr.candidates⟩

lemma leave (a : Spot) (o : Outcome) :
    Tracks E (Run.Beside D) (Session.leave a o) (Session.leave a o) :=
  .modify fun _ _ hr => ⟨hr.fuel, by simp only [hr.frames], hr.collecting,
    by simp only [hr.frames, hr.memo], hr.candidates⟩

lemma grow {body body' : Walk Outcome} (hbody : Tracks E (Run.Beside D) body body') (a : Spot)
    (count : Nat) (best : Outcome) : Tracks E (Run.Beside D) (Session.grow body a count best)
      (Session.grow body' a count best) := by
  induction count generalizing best with
  | zero => exact .pure _
  | succ count ih =>
    rw [Session.grow, Session.grow]
    refine .bind (.modify fun r r' hr => ?_) fun _ => hbody.bind fun o => ?_
    · exact ⟨hr.fuel, hr.frames, hr.collecting, by rw [hr.memo], hr.candidates⟩
    · exact .ite (fun _ => ih o) fun _ => .pure _

lemma matchInFrame {a : Spot} (hbody : Tracks E (Run.Beside D) (s.matchBody visit collect a)
      ((s.withModel m').matchBody visit' collect' a)) :
    Tracks E (Run.Beside D) (s.matchInFrame visit collect a)
      ((s.withModel m').matchInFrame visit' collect' a) := by
  rw [Session.matchInFrame_eq, Session.matchInFrame_eq]
  refine (emit _ _).bind fun _ => .bind (.modify fun r r' hr => ?_) fun _ => ?_
  · exact ⟨hr.fuel, by simp only [Run.enter, hr.frames], hr.collecting, hr.memo, hr.candidates⟩
  refine .bind ?_ fun o => (leave a o).bind fun _ => (emit _ _).bind fun _ => .pure o
  refine hbody.bind fun o => .get fun r r' hr => ?_
  rw [hr.frames]
  exact .ite (fun _ => grow hbody a _ o) fun _ => .pure o

/-- **A rule is matched to the same over both models.** -/
theorem matchRule (h : s.Companion m' D E) (d : Nat) (rule : RuleId) (p : Nat) :
    Tracks E (Run.Beside D) (s.matchRule d rule p) ((s.withModel m').matchRule d rule p) := by
  -- the rules inside a frame are visited with less depth
  induction d using Nat.strong_induction_on generalizing rule p with
  | _ d ih =>
    rw [Session.matchRule.eq_def, Session.matchRule.eq_def]
    refine (burn _).bind fun _ => .ite (fun _ => ?_) fun _ => .get fun r r' hr => ?_
    · exact (emit _ _).bind fun _ => (h.collectRule d rule).bind fun ph => .pure _
    rw [hr.memo, hr.frames]
    cases r.memo[(⟨rule, p⟩ : Spot)]? with
    | some e =>
      refine (emit _ _).bind fun _ => ?_
      exact .ite (fun _ => (markRecursion _).bind fun _ => .pure _) fun _ => .pure _
    | none =>
      refine .ite (fun _ => ?_) fun _ => ?_
      · exact (emit _ _).bind fun _ => (markRecursion _).bind fun _ => .pure _
      cases d with
      | zero => exact .throw _
      | succ d =>
        have hd := Nat.lt_succ_self d
        exact matchInFrame (h.matchBody (fun r q => ih d hd r q) (h.collectRule d) ⟨rule, p⟩)

/-! ## Completions -/

/-- The runs before the first steps are beside each other. -/
lemma beside_start (h : s.Companion m' D E) : s.start.Beside D (s.withModel m').start :=
  ⟨rfl, rfl, rfl, rfl, h.empty⟩

/-- Candidates with the same rules have texts over both models, or over none of them. -/
lemma completion (h : s.Companion m' D E) {c c' : Candidates} (hrules : c'.rules = c.rules)
    (o : Outcome) :
    (∃ e, s.completion o c = .error e ∧ (s.withModel m').completion o c' = .error e) ∨
      ∃ texts texts', s.completion o c = .ok
          ⟨texts, o.matched && s.reached o.stop, s.stream.typedPart? s.caret, o.stop⟩ ∧
        (s.withModel m').completion o c' = .ok
          ⟨texts', o.matched && s.reached o.stop, s.stream.typedPart? s.caret, o.stop⟩ := by
  have hnames : m'.ruleName = s.model.ruleName := funext h.resembles.ruleName
  have hmodel : (s.withModel m').model = m' := rfl
  simp only [Session.completion, Candidates.render, hmodel, hnames, hrules]
  cases c.rules.toList.mapM s.model.ruleName with
  | error d => exact Or.inl ⟨.defect d, rfl, rfl⟩
  | ok names => exact Or.inr ⟨_, _, rfl, rfl⟩

/-- **Both models give the same answer**, up to what they offer: the second one ends with an error
that is excused or that the first one ends with as well, or both end with the same verdict on the
text before the caret. -/
theorem complete (h : s.Companion m' D E) (hrules : ∀ c c', D c c' → c'.rules = c.rules)
    (name : String) :
    (∃ e, (s.withModel m').complete name = .error e ∧ (E e ∨ s.complete name = .error e)) ∨
      ∃ k c k' c', s.EndsWith name k c ∧ (s.withModel m').EndsWith name k' c' ∧ D k k' ∧
        c'.fullyParsed = c.fullyParsed ∧ c'.typedPart = c.typedPart ∧ c'.position = c.position := by
  have hroot' : (s.withModel m').model.ruleId? name = s.model.ruleId? name :=
    h.resembles.ruleId? name
  cases hroot : s.model.ruleId? name with
  | none =>
    rw [hroot] at hroot'
    exact Or.inl ⟨_, complete_of_unknown hroot', Or.inr (complete_of_unknown hroot)⟩
  | some root =>
    rw [hroot] at hroot'
    have htracks := h.matchRule s.limits.depth root (s.stream.skipHidden 0)
    have hcomplete := complete_of_root hroot
    have hcomplete' := complete_of_root hroot'
    cases hw : s.walk root with
    | error e r =>
      obtain ⟨e', r', hw', he⟩ := htracks.error h.beside_start hw
      have hwalk' : (s.withModel m').walk root = .error e' r' := hw'
      rw [hw] at hcomplete
      rw [hwalk'] at hcomplete'
      refine Or.inl ⟨e', hcomplete', ?_⟩
      rcases he with rfl | he
      · exact Or.inr hcomplete
      · exact Or.inl he
    | ok o r =>
      rw [hw] at hcomplete
      rcases htracks.ok h.beside_start hw with ⟨r', hw', hr⟩ | ⟨e, r', hw', he⟩
      · have hwalk' : (s.withModel m').walk root = .ok o r' := hw'
        rw [hwalk'] at hcomplete'
        rcases h.completion (hrules _ _ hr.candidates) o with
          ⟨e, hc, hc'⟩ | ⟨texts, texts', hc, hc'⟩
        · exact Or.inl ⟨e, hcomplete'.trans hc', Or.inr (hcomplete.trans hc)⟩
        · refine Or.inr ⟨r.candidates, _, r'.candidates, _, ⟨hcomplete.trans hc, ?_⟩,
            ⟨hcomplete'.trans hc', ?_⟩, hr.candidates, rfl, rfl, rfl⟩
          · exact ⟨root, o, r, hroot, hw, rfl⟩
          · exact ⟨root, o, r', hroot', hwalk', rfl⟩
      · have hwalk' : (s.withModel m').walk root = .error e r' := hw'
        rw [hwalk'] at hcomplete'
        exact Or.inl ⟨e, hcomplete', Or.inl he⟩

end Companion

end Session

end GrammarCompletion
