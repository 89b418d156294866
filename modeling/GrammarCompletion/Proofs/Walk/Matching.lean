/-
# Matching within a regime

`Regime.Matching` lists what has to be checked of a regime so that matching the body of a rule
stays within it, given that matching the rules inside it and collecting do.  `V` says which
outcomes these rules have; it may look at the run, but must stay true in later runs.  Two
predicates say where a walk can be in a body: `Todo` which nodes may have to be matched next at a
position, and `Due` from which nodes candidates may be collected.

Matching then stays within the regime, and its outcome is one that `Session.Matches` allows.
-/
import GrammarCompletion.Proofs.Walk.Matches
import GrammarCompletion.Proofs.Walk.Regime

namespace GrammarCompletion

namespace Walk.Regime

/-- What is needed to match a body within a regime. -/
structure Matching (K : Regime) (s : Session) (V : Run → Spot → Outcome → Prop)
    (Todo : List (Node RuleId) → Nat → Prop) (Due : List (Node RuleId) → Prop) : Prop where
  events : K.AllowsEvents fun e => e.isFraming = false
  stable : ∀ {r r' a o}, K.later r r' → V r a o → V r' a o
  skip : ∀ {n rest p}, Todo (n :: rest) p → n.isRequired = false → Todo rest p
  stay : ∀ {r n rest p q}, K.inv r → Todo (n :: rest) p →
    s.NodeMatches (V r) n p ⟨false, q, .matching⟩ → q = p
  next : ∀ {r n rest p q}, K.inv r → Todo (n :: rest) p →
    s.NodeMatches (V r) n p ⟨true, q, .matching⟩ → (n.isTerminal && s.reached q) = false →
      Todo rest q ∧ (n.isMultiple = true → Todo (n :: rest) q)
  due : ∀ {r n rest p o}, K.inv r → Todo (n :: rest) p → s.NodeMatches (V r) n p o →
    o.phase = .pending ∨ o.matched = true ∧ s.reached o.stop = true →
      Due rest ∧ (n.isMultiple = true → Due (n :: rest))

namespace Matching

variable {K : Regime} {s : Session} {V : Run → Spot → Outcome → Prop}
  {Todo : List (Node RuleId) → Nat → Prop} {Due : List (Node RuleId) → Prop}
  {matchRule : RuleId → Nat → Walk Outcome} {collect : RuleId → Walk Phase}
  {n : Node RuleId} {rest : List (Node RuleId)} {p : Nat}

/-- Matching the rules of the nodes that are to do stays within the regime. -/
def Calls (K : Regime) (V : Run → Spot → Outcome → Prop) (Todo : List (Node RuleId) → Nat → Prop)
    (matchRule : RuleId → Nat → Walk Outcome) : Prop :=
  ∀ n rest p id, Todo (n :: rest) p → n.symbol = .rule id →
    K.Keeps (matchRule id p) fun o r => V r ⟨id, p⟩ o

/-- Collecting from the nodes that are due stays within the regime. -/
def Collects (K : Regime) (s : Session) (Due : List (Node RuleId) → Prop)
    (collect : RuleId → Walk Phase) : Prop :=
  ∀ nodes, Due nodes →
    K.Keeps (s.collectNodes collect nodes) fun ph _ => s.model.NodesLeave [] nodes ph

lemma stableNode (h : K.Matching s V Todo Due) {r r' : Run} {o : Outcome} (hl : K.later r r')
    (hn : s.NodeMatches (V r) n p o) : s.NodeMatches (V r') n p o :=
  hn.mono fun _ _ => h.stable hl

lemma node (hcall : Calls K V Todo matchRule) (htodo : Todo (n :: rest) p) :
    K.Keeps (s.matchNode matchRule n p) fun o r => s.NodeMatches (V r) n p o := by
  unfold Session.matchNode
  split
  · next id hn => exact .pure fun _ _ => by simp only [Session.NodeMatches, hn]
  · next id hn =>
    refine (hcall n rest p id htodo hn).mono fun o r _ ho => ?_
    simpa only [Session.NodeMatches, hn] using ho

lemma collectBehind (hcollect : Collects K s Due collect)
    (hdue : Due rest ∧ (n.isMultiple = true → Due (n :: rest))) :
    K.Keeps (s.collectBehind collect n rest) fun ph _ => s.model.NodesLeave [] rest ph := by
  unfold Session.collectBehind
  cases hm : n.isMultiple with
  | false => simpa using hcollect rest hdue.1
  | true =>
    exact (hcollect (n :: rest) (hdue.2 hm)).discard.seq (hcollect rest hdue.1)

lemma collectAtCaret (h : K.Matching s V Todo Due) (hcollect : Collects K s Due collect)
    (hdue : Due rest ∧ (n.isMultiple = true → Due (n :: rest))) :
    K.Keeps (s.collectAtCaret collect n rest p) fun ph _ =>
      s.model.NodesLeave [] (n.behind rest) ph := by
  unfold Session.collectAtCaret Session.collectAfterRepeat Node.behind
  refine (Keeps.emit h.events rfl).seq ?_
  cases hm : n.isMultiple with
  | false => simpa using hcollect rest hdue.1
  | true =>
    have hagain := hcollect (n :: rest) (hdue.2 hm)
    cases hr : n.isRequired with
    | false => simpa using hagain
    | true => simpa using hagain.seq (hcollect rest hdue.1)

/-- Repeating a node. -/
lemma repeats (h : K.Matching s V Todo Due) (hcall : Calls K V Todo matchRule)
    (hcollect : Collects K s Due collect) (hm : n.isMultiple = true) {count : Nat}
    (hrest : Todo rest p) (hmore : Todo (n :: rest) p) :
    K.Keeps (s.matchRepeats matchRule collect n rest count p) fun k r =>
      s.Repeats (V r) n rest count p k ∧ ∀ q, k = .next q → Todo rest q := by
  induction count generalizing p with
  | zero => exact .pure fun _ _ => ⟨.spent, by rintro q ⟨⟩; exact hrest⟩
  | succ count ih =>
    -- the cases are those of the function, each with its constructor of `Repeats`
    rw [Session.matchRepeats]
    split
    · next hp => exact .pure fun _ _ => ⟨.atEnd hp, by rintro q ⟨⟩; exact hrest⟩
    next hp =>
    have hp : s.stream.atEnd p = false := by simpa using hp
    refine (node hcall hmore).bind fun o => ?_
    obtain ⟨matched, q, phase⟩ := o
    cases phase with
    | pending =>
      refine .intro (fun r hr hn => h.due hr hmore hn (Or.inl rfl)) fun hdue => ?_
      refine ((collectBehind hcollect hdue).frame h.stableNode).bind fun ph => ?_
      exact .pure fun r _ hn => ⟨.pending hp hn.1 hn.2, nofun⟩
    | matching =>
      cases matched with
      | false =>
        -- where the occurrence failed, it has not moved
        refine .pure fun r hr hn => ⟨.failed hp hn, ?_⟩
        rintro _ ⟨⟩
        exact h.stay hr hmore hn ▸ hrest
      | true =>
        simp only [reduceCtorEq, if_false, Bool.not_true, Bool.false_eq_true]
        cases hc : n.isTerminal && s.reached q with
        | true =>
          simp only [if_true]
          rw [Bool.and_eq_true] at hc
          refine .intro (fun r hr hn => h.due hr hmore hn (Or.inr ⟨rfl, hc.2⟩)) fun hdue => ?_
          refine ((h.collectAtCaret hcollect hdue).frame h.stableNode).bind fun ph => ?_
          exact .pure fun r _ hn => ⟨.atCaret hp hn.1 hc.1 hc.2 hn.2, nofun⟩
        | false =>
          simp only [Bool.false_eq_true, if_false]
          split
          · next hq =>
            refine .pure fun r _ hn => ⟨.idle hp (hq ▸ hn) (hq ▸ hc), ?_⟩
            rintro _ ⟨⟩
            exact hrest
          · next hq =>
            refine .intro (fun r hr hn => h.next hr hmore hn hc) fun htodo => ?_
            refine (ih htodo.1 (htodo.2 hm)).from fun r k r' _ hn hl hk => ⟨?_, hk.2⟩
            exact .more hp (h.stableNode hl hn) hc hq hk.1

/-- **Matching nodes in a row stays within the regime.** -/
theorem nodes (h : K.Matching s V Todo Due) (hcall : Calls K V Todo matchRule)
    (hcollect : Collects K s Due collect) {nodes : List (Node RuleId)} (htodo : Todo nodes p) :
    K.Keeps (s.matchNodes matchRule collect nodes p) fun o r => s.Matches (V r) nodes p o := by
  induction nodes generalizing p with
  | nil => exact .pure fun _ _ => .nil
  | cons n rest ih =>
    -- what is known of the first node stays true while the rest is matched
    rw [Session.matchNodes]
    refine (node hcall htodo).bind fun o => ?_
    obtain ⟨matched, q, phase⟩ := o
    cases phase with
    | pending =>
      refine .intro (fun r hr hn => h.due hr htodo hn (Or.inl rfl)) fun hdue => ?_
      refine ((collectBehind hcollect hdue).frame h.stableNode).bind fun ph => ?_
      exact .pure fun r _ hn => .pending hn.1 hn.2
    | matching =>
      cases matched with
      | false =>
        simp only [reduceCtorEq, if_false, Bool.not_false, if_true]
        split
        · next hr => exact .pure fun r _ hn => .failed hr hn
        · next hr =>
          have hr : n.isRequired = false := by simpa using hr
          refine .intro (fun r hinv hn => h.stay hinv htodo hn) fun hq => ?_
          refine (ih (p := q) (hq ▸ h.skip htodo hr)).from fun r o r' _ hn hl ho => ?_
          exact .skipped hr (h.stableNode hl hn) ho
      | true =>
        simp only [reduceCtorEq, if_false, Bool.not_true, Bool.false_eq_true]
        cases hq : s.reached q with
        | true =>
          refine .intro (fun r hr hn => h.due hr htodo hn (Or.inr ⟨rfl, hq⟩)) fun hdue => ?_
          refine ((h.collectAtCaret hcollect hdue).frame h.stableNode).bind fun ph => ?_
          exact .pure fun r _ hn => .atCaret hn.1 hq hn.2
        | false =>
          simp only [Bool.false_eq_true, if_false]
          refine .intro (fun r hr hn => h.next hr htodo hn (by simp [hq])) fun htodo' => ?_
          cases hm : n.isMultiple with
          | false =>
            refine (ih htodo'.1).from fun r o r' _ hn hl ho => ?_
            exact .once (h.stableNode hl hn) hq hm ho
          | true =>
            refine ((h.repeats hcall hcollect hm htodo'.1 (htodo'.2 hm)).frame
              h.stableNode).bind fun k => ?_
            cases k with
            | finished o => exact .pure fun r _ hn => .finished hn.1 hq hm hn.2.1
            | next q' =>
              refine .intro (fun r _ hn => hn.2.2 q' rfl) fun htodo'' => ?_
              refine (ih htodo'').from fun r o r' _ hn hl ho => ?_
              exact .repeated (h.stableNode hl hn.1) hq hm
                (hn.2.1.mono fun _ _ => h.stable hl) ho

lemma sequences (h : K.Matching s V Todo Due) (hcall : Calls K V Todo matchRule)
    (hcollect : Collects K s Due collect) {start i : Nat} {t : Tally}
    {list : List (Sequence RuleId)} (htodo : ∀ q ∈ list, Todo q.nodes start) :
    K.Keeps (s.matchSequences matchRule collect start i t list) fun t' r =>
      s.Tallies (V r) start t list t' := by
  induction list generalizing i t with
  | nil => exact .pure fun _ _ => .nil
  | cons q rest ih =>
    rw [Session.matchSequences]
    refine (h.nodes hcall hcollect (htodo q List.mem_cons_self)).bind fun o => ?_
    have hstable : ∀ {r r'}, K.later r r' → s.Matches (V r) q.nodes start o →
        s.Matches (V r') q.nodes start o := fun hl ho => ho.mono fun _ _ => h.stable hl
    refine ((Keeps.emit h.events rfl).frame hstable).bind fun _ => ?_
    refine (ih fun q' hq' => htodo q' (List.mem_cons_of_mem q hq')).from ?_
    exact fun r t' r' _ ho hl ht' => .cons (hstable hl ho.1) ht'

/-- **Matching a body stays within the regime.** -/
theorem body (h : K.Matching s V Todo Due) (hcall : Calls K V Todo matchRule)
    (hcollect : Collects K s Due collect) {a : Spot}
    (htodo : ∀ list, s.model.body a.rule = .ok (.sequences list) →
      ∀ q ∈ list, Todo q.nodes a.start)
    (hdefect : ∀ d, s.model.body a.rule = .error d → ∀ r, K.inv r → K.fault (.defect d) r) :
    K.Keeps (s.matchBody matchRule collect a) fun o r => s.BodyMatches (V r) a o := by
  unfold Session.matchBody
  refine Keeps.bind (A := fun body _ => s.model.body a.rule = .ok body)
    (.ofExcept (fun _ hb _ _ => hb) hdefect) fun body => ?_
  refine .intro (fun r _ hb => hb) fun hb => ?_
  cases body with
  | tokenSet tokens => exact .pure fun _ _ _ => .tokenSet hb
  | sequences list =>
    exact Keeps.keepsFrom (Keeps.map (h.sequences hcall hcollect (htodo list hb))
      fun t r _ ht => .sequences hb ht)

end Matching

end Walk.Regime

end GrammarCompletion
