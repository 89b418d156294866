/-
# Walks that stay within their session

Over a model in which nodes refer to rules of the model, a walk never ends with a defect, and it
never leaves the stream.  What it keeps on the way is all of this kind as well (`Run.Valid`): the
results that can be used again end in the stream, the rules among the candidates are rules of the
model, and the events name only rules of the model and positions of the stream.

The parts of a walk inside a body are the runs of plans, so that it is enough to look at the visits
of rules (`safe_collectRule`, `safe_matchRule`).
-/
import GrammarCompletion.Proofs.Safety.Plans
import GrammarCompletion.Proofs.Walk.Visiting

namespace GrammarCompletion

open Walk Regime

/-- A run that keeps positions of the stream and rules of the model only. -/
structure Run.Valid (s : Session) (r : Run) : Prop where
  /-- Results end in the stream. -/
  memo : ∀ (a : Spot) k, r.memo[a]? = some k → k.outcome.stop ≤ s.stream.size
  /-- Rules among the candidates are rules of the model. -/
  rules : ∀ id ∈ r.candidates.rules, id.index < s.model.ruleCount
  /-- Events name rules of the model and positions of the stream. -/
  events : ∀ e ∈ r.events, e.Valid s

namespace Session

/-- The regime of walks that stay within their session: they do not end with a defect. -/
def safeRegime (s : Session) : Regime where
  inv := Run.Valid s
  later _ _ := True
  fault e r := (∀ d, e ≠ .defect d) ∧ ∀ ev ∈ r.events, ev.Valid s
  refl _ := trivial
  trans _ _ := trivial

variable {s : Session} {rule : RuleId} {p : Nat} {a : Spot} {o : Outcome} {α : Type}

/-! ## Steps -/

lemma valid_start : s.start.Valid s := by
  refine ⟨fun a k h => ?_, fun id h => ?_, fun e h => ?_⟩
  · simp [start] at h
  · exact absurd h OrderedSet.not_mem_empty
  · simp [start] at h

lemma safe_modify {f : Run → Run} (h : ∀ r, r.Valid s → (f r).Valid s) :
    s.safeRegime.Keeps (modify f : Walk Unit) fun _ _ => True :=
  .modify fun r hr => ⟨h r hr, trivial⟩

lemma safe_emit (e : Event) (he : e.Valid s) : s.safeRegime.Keeps (emit e) fun _ _ => True :=
  safe_modify fun _ hr => ⟨hr.memo, hr.rules, List.forall_mem_cons.2 ⟨he, hr.events⟩⟩

lemma safe_burn : s.safeRegime.Keeps (burn s.limits.fuel) fun _ _ => True :=
  .burn ⟨fun _ _ hr => ⟨⟨hr.memo, hr.rules, hr.events⟩, trivial⟩,
    fun _ hr => ⟨by simp, hr.events⟩⟩

lemma safe_limit {A : α → Run → Prop} :
    s.safeRegime.Keeps (throw (.recursionLimit s.limits.depth) : Walk α) A :=
  .throw fun _ hr => ⟨by simp, hr.events⟩

lemma safe_markRecursion : s.safeRegime.Keeps (markRecursion a) fun _ _ => True :=
  safe_modify fun _ hr => ⟨hr.memo, hr.rules, hr.events⟩

lemma safe_leave (ho : o.stop ≤ s.stream.size) :
    s.safeRegime.Keeps (leave a o) fun _ _ => True := by
  refine safe_modify fun r hr => ⟨?_, hr.rules, hr.events⟩
  dsimp only
  split
  · exact forall_memo_erase fun b k _ hb => hr.memo b k hb
  · exact forall_memo_insert (fun b k _ hb => hr.memo b k hb) ho

/-- A rule of the model has a body. -/
lemma safe_body {f : RuleBody RuleId → Walk α} {A : α → Run → Prop}
    (hrule : rule.index < s.model.ruleCount)
    (hf : ∀ body, s.model.body rule = .ok body → s.safeRegime.Keeps (f body) A) :
    s.safeRegime.Keeps (Walk.ofExcept (s.model.body rule) >>= f) A := by
  cases hb : s.model.body rule with
  | error d => exact absurd hb (body_ok hrule)
  | ok body => exact hf body hb

/-! ## Plans -/

section

variable {matchRule : RuleId → Nat → Walk Outcome} {collect : RuleId → Walk Phase}

/-- Plans that stay within a session are carried out within its regime. -/
lemma safe_run {A : α → Prop} {x : Plan α} (h : x.Safe s A)
    (hmatch : ∀ rule p, rule.index < s.model.ruleCount → p ≤ s.stream.size →
      s.safeRegime.Keeps (matchRule rule p) fun o _ => o.stop ≤ s.stream.size)
    (hcollect : ∀ rule, rule.index < s.model.ruleCount →
      s.safeRegime.Keeps (collect rule) fun _ _ => True) :
    s.safeRegime.Keeps (x.run matchRule collect) fun a _ => A a := by
  induction h with
  | done h => exact .pure fun _ _ => h
  | visit hrule hp _ ih =>
    exact (hmatch _ _ hrule hp).bind fun o =>
      .intro (fun _ _ ho => ho) fun ho => (ih o ho).keepsFrom
  | gather hrule _ ih => exact (hcollect _ hrule).bind fun ph => (ih ph).keepsFrom
  | @offer t c _ _ ih =>
    refine (safe_emit (.offerToken t c) trivial).seq (Keeps.seq (safe_modify fun r hr => ?_) ih)
    exact ⟨hr.memo, Candidates.rules_offerToken.symm ▸ hr.rules, hr.events⟩
  | note he _ ih => exact (safe_emit _ he).seq ih

end

/-! ## Collecting -/

lemma validNodes_of_body (hwf : s.model.WellFormed) {body : RuleBody RuleId}
    (hb : s.model.body rule = .ok body) : ∀ q ∈ body.sequenceList, s.model.ValidNodes q.nodes := by
  cases body with
  | tokenSet tokens => exact fun q hq => absurd hq (List.not_mem_nil)
  | sequences list => exact fun q hq => hwf q (Model.mem_sequences hb hq)

lemma safe_collectTokens (tokens : List TokenId) :
    s.safeRegime.Keeps (s.collectTokens tokens) fun _ _ => True := by
  -- there is no rule in the plan, so it does not matter what is done with rules
  have hrun : s.collectTokens tokens = (Plan.collectTokens s tokens).run
      (fun _ p => pure ⟨false, p, .matching⟩) fun _ => pure .matching := collectTokens_eq_run tokens
  rw [hrun]
  exact safe_run (.collectTokens tokens) (fun _ _ _ hp => .pure fun _ _ => hp)
    fun _ _ => .pure fun _ _ => trivial

lemma safe_collectSequences {collect : RuleId → Walk Phase} {list : List (Sequence RuleId)}
    (hlist : ∀ q ∈ list, s.model.ValidNodes q.nodes)
    (hcollect : ∀ rule, rule.index < s.model.ruleCount →
      s.safeRegime.Keeps (collect rule) fun _ _ => True) :
    s.safeRegime.Keeps (s.collectSequences collect list) fun _ _ => True := by
  have hrun : s.collectSequences collect list = (Plan.collectSequences s list).run
      (fun _ p => pure ⟨false, p, .matching⟩) collect := collectSequences_eq_run list
  rw [hrun]
  exact safe_run (.collectSequences hlist) (fun _ _ _ hp => .pure fun _ _ => hp) hcollect

/-- **Collecting from a rule of the model stays within the session.** -/
theorem safe_collectRule (hwf : s.model.WellFormed) (d : Nat)
    (hrule : rule.index < s.model.ruleCount) :
    s.safeRegime.Keeps (s.collectRule d rule) fun _ _ => True := by
  induction d using Nat.strong_induction_on generalizing rule with
  | _ d ih =>
    rw [collectRule.eq_def]
    refine safe_burn.seq ((safe_emit (.collect rule) hrule).seq ?_)
    split
    · refine Keeps.seq (Keeps.seq (safe_emit (.offerRule rule) hrule) (safe_modify fun r hr => ?_))
        (.pure fun _ _ => trivial)
      refine ⟨hr.memo, fun id hid => ?_, hr.events⟩
      rcases OrderedSet.mem_insert.1 hid with rfl | hid
      · exact hrule
      · exact hr.rules id hid
    refine .get fun run _ => Keeps.keepsFrom ?_
    split
    · exact .pure fun _ _ => trivial
    refine safe_body hrule fun body hb => ?_
    cases body with
    | tokenSet tokens => exact safe_collectTokens tokens.toList
    | sequences list =>
      cases d with
      | zero => exact safe_limit
      | succ d =>
        have hlist := safe_collectSequences (validNodes_of_body hwf hb)
          fun rule hrule => ih d (Nat.lt_succ_self d) hrule
        refine Keeps.seq (safe_modify fun r hr => ⟨hr.memo, hr.rules, hr.events⟩) ?_
        refine Keeps.bind hlist fun _ => Keeps.keepsFrom ?_
        exact Keeps.seq (safe_modify fun r hr => ⟨hr.memo, hr.rules, hr.events⟩)
          (.pure fun _ _ => trivial)

/-! ## Matching -/

lemma safe_matchBody (hwf : s.model.WellFormed) (hrule : a.rule.index < s.model.ruleCount)
    (hp : a.start ≤ s.stream.size) {matchRule : RuleId → Nat → Walk Outcome}
    {collect : RuleId → Walk Phase}
    (hmatch : ∀ rule p, rule.index < s.model.ruleCount → p ≤ s.stream.size →
      s.safeRegime.Keeps (matchRule rule p) fun o _ => o.stop ≤ s.stream.size)
    (hcollect : ∀ rule, rule.index < s.model.ruleCount →
      s.safeRegime.Keeps (collect rule) fun _ _ => True) :
    s.safeRegime.Keeps (s.matchBody matchRule collect a) fun o _ => o.stop ≤ s.stream.size := by
  cases hb : s.model.body a.rule with
  | error d => exact absurd hb (body_ok hrule)
  | ok body =>
    rw [matchBody_eq_run a hb]
    exact safe_run (.matchBody hp (validNodes_of_body hwf hb)) hmatch hcollect

/-- **A visit of a rule of the model stays within the session**, and ends in the stream. -/
theorem safe_matchRule (hwf : s.model.WellFormed) (d : Nat)
    (hrule : rule.index < s.model.ruleCount) (hp : p ≤ s.stream.size) :
    s.safeRegime.Keeps (s.matchRule d rule p) fun o _ => o.stop ≤ s.stream.size := by
  induction d using Nat.strong_induction_on generalizing rule p with
  | _ d ih =>
    rw [matchRule.eq_def]
    refine safe_burn.seq ?_
    split
    · refine (safe_emit (.caret p) hp).seq ?_
      exact (safe_collectRule hwf d hrule).map fun _ _ _ _ => hp
    refine .get fun run hrun => Keeps.keepsFrom ?_
    split
    · next k hk =>
      -- a result that is used again ends in the stream
      have hstop : k.outcome.stop ≤ s.stream.size := hrun.memo _ k hk
      refine (safe_emit (.memoHit rule p) ⟨hrule, hp⟩).seq ?_
      split
      · exact safe_markRecursion.seq (.pure fun _ _ => hstop)
      · exact .pure fun _ _ => hstop
    split
    · refine (safe_emit (.leftRecursion rule p) ⟨hrule, hp⟩).seq ?_
      exact safe_markRecursion.seq (.pure fun _ _ => hp)
    cases d with
    | zero => exact safe_limit
    | succ d =>
      have hbody : s.safeRegime.Keeps
          (s.matchBody (s.matchRule d) (s.collectRule d) ⟨rule, p⟩) fun o _ =>
            o.stop ≤ s.stream.size :=
        safe_matchBody hwf hrule hp (fun _ _ hrule hp => ih d (Nat.lt_succ_self d) hrule hp)
          fun _ hrule => safe_collectRule hwf d hrule
      refine .matchInFrame (safe_emit (.enter rule p) ⟨hrule, hp⟩)
        (fun _ hr => ⟨⟨hr.memo, hr.rules, hr.events⟩, trivial⟩) hbody (fun _ _ ho => ?_)
        (fun _ ho => safe_leave ho) fun o ho => safe_emit (.exit rule _ _ _) ⟨hrule, ho⟩
      refine hbody.grow (fun r o hr ho => ⟨⟨?_, hr.rules, hr.events⟩, trivial⟩) ho
      exact forall_memo_insert (fun b k _ hb => hr.memo b k hb) ho

/-- A walk from a rule of the model stays within the session. -/
lemma safe_walk (hwf : s.model.WellFormed) (hrule : rule.index < s.model.ruleCount) :
    s.safeRegime.Keeps (s.matchRule s.limits.depth rule (s.stream.skipHidden 0)) fun o _ =>
      o.stop ≤ s.stream.size :=
  safe_matchRule hwf _ hrule (TokenStream.skipHidden_le_size (Nat.zero_le _))

end Session

end GrammarCompletion
