/-
# The calls of a walk

A walk is made of calls: a rule is visited at a spot, candidates are collected from a rule, or they
are collected from nodes in a row.  `Session.Calls` says which calls are made while a completion is
computed, each with the run in which it is made, also if the walk ends with an error later on.  A
visit makes its calls from the plan of its body, in each of the rounds in which the body is matched
(`Session.RoundBegins`), and collecting from a rule makes them from the plan of its sequences.

The requests of a plan are followed one after the other, each answered by the walk itself
(`Plan.Asks`).  No other calls are made: what a plan comes to depends on the answers to its requests
and on nothing else (`Plan.run_eq_of_asks`), and so does what a rule is matched to in its frame
(`Session.matchInFrame_eq_of_calls`).
-/
import GrammarCompletion.Proofs.Offers.Walk

namespace GrammarCompletion

open Walk Regime

/-- A call of a part of a walk, inside which at most `depth` rules may lie inside each other. -/
inductive Call where
  /-- The rule of a spot is matched there. -/
  | visit (depth : Nat) (a : Spot)
  /-- Candidates are collected from a rule. -/
  | gather (depth : Nat) (rule : RuleId)
  /-- Candidates are collected from nodes in a row. -/
  | scan (depth : Nat) (nodes : List (Node RuleId))

/-- A plan that is carried out from a run makes a call in a later run.  The requests before the call
have been answered without an error. -/
inductive Plan.Asks (s : Session) (d : Nat) {α : Type} : Plan α → Run → Call → Run → Prop
  | visit {rule : RuleId} {p : Nat} {next : Outcome → Plan α} {r : Run} :
      Asks s d (.visit rule p next) r (.visit d ⟨rule, p⟩) r
  | gather {rule : RuleId} {next : Phase → Plan α} {r : Run} :
      Asks s d (.gather rule next) r (.gather d rule) r
  | scan {nodes : List (Node RuleId)} {f : Phase → Plan α} {r : Run} :
      Asks s d (Plan.collectNodes s nodes >>= f) r (.scan d nodes) r
  | afterVisit {rule : RuleId} {p : Nat} {next : Outcome → Plan α} {r r₁ r' : Run} {o : Outcome}
      {c : Call} (hrun : s.matchRule d rule p r = .ok o r₁) (h : Asks s d (next o) r₁ c r') :
      Asks s d (.visit rule p next) r c r'
  | afterGather {rule : RuleId} {next : Phase → Plan α} {r r₁ r' : Run} {ph : Phase} {c : Call}
      (hrun : s.collectRule d rule r = .ok ph r₁) (h : Asks s d (next ph) r₁ c r') :
      Asks s d (.gather rule next) r c r'
  | afterOffer {t : TokenId} {l : List TokenId} {next : Plan α} {r r' : Run} {c : Call}
      (h : Asks s d next { r with
        events := .offerToken t l :: r.events, candidates := r.candidates.offerToken t l } c r') :
      Asks s d (.offer t l next) r c r'
  | afterNote {e : Event} {next : Plan α} {r r' : Run} {c : Call}
      (h : Asks s d next (r.record e) c r') : Asks s d (.note e next) r c r'

namespace Session

/-- From the run in which the body of the rule of `a` is matched first, a round of matching it
begins in a later run.  There is no best outcome before the first round; in each further one the
best outcome so far stands for the rule at its own spot. -/
inductive RoundBegins (body : Walk Outcome) (a : Spot) (first : Run) : Option Outcome → Run → Prop
  | first : RoundBegins body a first none first
  | second {o : Outcome} {r : Run} (hrun : body first = .ok o r)
      (hrecursed : r.frames.head?.any Frame.recursed = true) :
      RoundBegins body a first (some o) { r with memo := r.memo.insert a ⟨o, true⟩ }
  | next {best o : Outcome} {r r' : Run} (h : RoundBegins body a first (some best) r)
      (hrun : body r = .ok o r') (hbetter : o.Exceeds best) :
      RoundBegins body a first (some o) { r' with memo := r'.memo.insert a ⟨o, true⟩ }

/-- A call is made in a run while the completion for a rule of a name is computed. -/
inductive Calls (s : Session) (name : String) : Call → Run → Prop
  | root {rule : RuleId} (h : s.model.ruleId? name = some rule) :
      Calls s name (.visit s.limits.depth ⟨rule, s.stream.skipHidden 0⟩) s.start
  | caret {d n : Nat} {a : Spot} {r : Run} (h : Calls s name (.visit d a) r)
      (hfuel : r.fuel = n + 1) (hq : s.reached a.start = true) :
      Calls s name (.gather d a.rule) (r.visited n (.caret a.start))
  | body {d n : Nat} {a : Spot} {body : RuleBody RuleId} {best : Option Outcome} {c : Call}
      {r r₁ r' : Run} (h : Calls s name (.visit (d + 1) a) r) (hfuel : r.fuel = n + 1)
      (hq : s.reached a.start = false) (hm : r.memo[a]? = none)
      (hnew : a ∉ r.frames.map Frame.spot) (hb : s.model.body a.rule = .ok body)
      (hround : RoundBegins (s.matchBody (s.matchRule d) (s.collectRule d) a) a
        ((r.visited n (.enter a.rule a.start)).enter a) best r₁)
      (hask : (Plan.matchBody s a.start body).Asks s d r₁ c r') : Calls s name c r'
  | sequences {d n : Nat} {rule : RuleId} {list : List (Sequence RuleId)} {c : Call} {r r' : Run}
      (h : Calls s name (.gather (d + 1) rule) r) (hfuel : r.fuel = n + 1)
      (hopen : s.IsOpen r.collecting rule) (hb : s.model.body rule = .ok (.sequences list))
      (hask : (Plan.collectSequences s list).Asks s d
        { r.visited n (.collect rule) with collecting := rule :: r.collecting } c r') :
      Calls s name c r'

/-- A call that is made in a run returns, and leaves another run behind. -/
def Returns (s : Session) (r r' : Run) : Call → Prop
  | .visit d a => ∃ o, s.matchRule d a.rule a.start r = .ok o r'
  | .gather d rule => ∃ ph, s.collectRule d rule r = .ok ph r'
  | .scan d nodes => ∃ ph, s.collectNodes (s.collectRule d) nodes r = .ok ph r'

end Session

/-! ## The requests of a plan -/

section

variable {s : Session} {d : Nat} {α β : Type} {r r' : Run} {c : Call}

/-- **A plan makes no other calls**: what it comes to depends on the answers to what it asks for
alone. -/
theorem Plan.run_eq_of_asks {matchRule : RuleId → Nat → Walk Outcome}
    {collect : RuleId → Walk Phase} (x : Plan α)
    (hvisit : ∀ rule p r', x.Asks s d r (.visit d ⟨rule, p⟩) r' →
      matchRule rule p r' = s.matchRule d rule p r')
    (hgather : ∀ rule r', x.Asks s d r (.gather d rule) r' →
      collect rule r' = s.collectRule d rule r') :
    x.run matchRule collect r = x.run (s.matchRule d) (s.collectRule d) r := by
  induction x generalizing r with
  | done a => rfl
  | visit rule p next ih =>
    simp only [Plan.run, Bind.bind, EStateM.bind, hvisit rule p r .visit]
    cases hrun : s.matchRule d rule p r with
    | error e r₁ => rfl
    | ok o r₁ =>
      exact ih o (fun rule p r' h => hvisit rule p r' (.afterVisit hrun h))
        fun rule r' h => hgather rule r' (.afterVisit hrun h)
  | gather rule next ih =>
    simp only [Plan.run, Bind.bind, EStateM.bind, hgather rule r .gather]
    cases hrun : s.collectRule d rule r with
    | error e r₁ => rfl
    | ok ph r₁ =>
      exact ih ph (fun rule p r' h => hvisit rule p r' (.afterGather hrun h))
        fun rule r' h => hgather rule r' (.afterGather hrun h)
  | offer t l next ih =>
    exact ih (fun rule p r' h => hvisit rule p r' (.afterOffer h))
      fun rule r' h => hgather rule r' (.afterOffer h)
  | note e next ih =>
    exact ih (fun rule p r' h => hvisit rule p r' (.afterNote h))
      fun rule r' h => hgather rule r' (.afterNote h)

/-! ## Visits and rounds -/

namespace Session

variable {name : String} {a : Spot} {n : Nat} {best : Outcome}

lemma grow_eq_of_rounds {x y : Walk Outcome}
    (h : ∀ best r', RoundBegins x a r best r' → y r' = x r') {count : Nat} {r₁ : Run}
    (hround : RoundBegins x a r (some best) { r₁ with memo := r₁.memo.insert a ⟨best, true⟩ }) :
    Session.grow y a count best r₁ = Session.grow x a count best r₁ := by
  induction count generalizing best r₁ with
  | zero => rfl
  | succ count ih =>
    simp only [Session.grow, Bind.bind, EStateM.bind, modify, modifyGet, MonadStateOf.modifyGet,
      EStateM.modifyGet, h _ _ hround]
    cases hrun : x { r₁ with memo := r₁.memo.insert a ⟨best, true⟩ } with
    | error e r₂ => rfl
    | ok o r₂ =>
      dsimp only
      split
      · next hbetter =>
        exact ih (hround.next hrun (by simpa [Outcome.Exceeds] using hbetter))
      · rfl

/-- Only the rounds of a body matter to what a rule is matched to in its frame. -/
lemma matchGrown_eq_of_rounds {matchRule matchRule' : RuleId → Nat → Walk Outcome}
    {collect collect' : RuleId → Walk Phase}
    (h : ∀ best r', RoundBegins (s.matchBody matchRule collect a) a r best r' →
      s.matchBody matchRule' collect' a r' = s.matchBody matchRule collect a r') :
    s.matchGrown matchRule' collect' a r = s.matchGrown matchRule collect a r := by
  simp only [matchGrown, Bind.bind, EStateM.bind, h none r .first]
  cases hrun : s.matchBody matchRule collect a r with
  | error e r₁ => rfl
  | ok seed r₁ =>
    simp only [get, getThe, MonadStateOf.get, EStateM.get]
    split
    · next hrecursed => exact grow_eq_of_rounds h (.second hrun hrecursed)
    · rfl

/-- **A visit makes no other calls**: to match a rule in its frame, only the answers to the calls
that are made matter. -/
theorem matchInFrame_eq_of_calls {matchRule : RuleId → Nat → Walk Outcome}
    {collect : RuleId → Walk Phase} (hc : s.Calls name (.visit (d + 1) a) r)
    (hfuel : r.fuel = n + 1) (hq : s.reached a.start = false) (hm : r.memo[a]? = none)
    (hnew : a ∉ r.frames.map Frame.spot)
    (hvisit : ∀ b r', s.Calls name (.visit d b) r' →
      matchRule b.rule b.start r' = s.matchRule d b.rule b.start r')
    (hgather : ∀ rule r', s.Calls name (.gather d rule) r' →
      collect rule r' = s.collectRule d rule r') :
    s.matchInFrame matchRule collect a { r with fuel := n } =
      s.matchInFrame (s.matchRule d) (s.collectRule d) a { r with fuel := n } := by
  have hgrown : s.matchGrown matchRule collect a ((r.visited n (.enter a.rule a.start)).enter a) =
      s.matchGrown (s.matchRule d) (s.collectRule d) a
        ((r.visited n (.enter a.rule a.start)).enter a) := by
    refine matchGrown_eq_of_rounds fun best r' hround => ?_
    cases hb : s.model.body a.rule with
    | error e =>
      simp only [matchBody, hb, Walk.ofExcept, throw, throwThe, MonadExceptOf.throw, EStateM.throw,
        Bind.bind, EStateM.bind]
    | ok body =>
      rw [matchBody_eq_run a hb, matchBody_eq_run a hb]
      exact Plan.run_eq_of_asks _
        (fun rule p r₁ h => hvisit ⟨rule, p⟩ r₁ (hc.body hfuel hq hm hnew hb hround h))
        fun rule r₁ h => hgather rule r₁ (hc.body hfuel hq hm hnew hb hround h)
  have hbind : ∀ {x y : Walk Outcome} {f : Outcome → Walk Outcome} {r₁ : Run}, x r₁ = y r₁ →
      (x >>= f) r₁ = (y >>= f) r₁ := by
    intro x y f r₁ h
    simp only [Bind.bind, EStateM.bind, h]
  rw [matchInFrame_eq, matchInFrame_eq]
  exact hbind hgrown

end Session

/-! ## What is true at the requests of a plan -/

lemma Session.extends_collectRule {rule : RuleId} {ph : Phase}
    (h : s.collectRule d rule r = .ok ph r') : r.Extends r' := by
  obtain ⟨-, hext, -⟩ := s.adds_collectRule d rule r.collecting r ph r' rfl h
  exact hext

/-- What collecting leaves alone and visits keep is true wherever a plan makes a call, and rules are
visited only where the plan asks for them. -/
lemma Plan.Mirrors.asks {I : Run → Prop} {Ask : Spot → Prop} {V : Spot → Outcome → Prop}
    {Q : α → β → Prop} {x : Plan α} {y : Plan β} (h : Plan.Mirrors (· = ·) Ask V Q x y)
    (hI : ∀ r r', I r → r.Extends r' → I r')
    (hvisit : ∀ a r o r', Ask a → I r → s.matchRule d a.rule a.start r = .ok o r' → V a o ∧ I r')
    (hask : x.Asks s d r c r') (hr : I r) :
    I r' ∧ ∀ e a, c = .visit e a → e = d ∧ Ask a := by
  induction hask generalizing y with
  | visit =>
    cases h with
    | visit hp ha _ => exact ⟨hr, by rintro e a ⟨⟩; exact ⟨rfl, ha⟩⟩
  | gather => exact ⟨hr, nofun⟩
  | scan => exact ⟨hr, nofun⟩
  | afterVisit hrun _ ih =>
    cases h with
    | visit hp ha h =>
      obtain ⟨hv, hr₁⟩ := hvisit _ _ _ _ ha hr hrun
      exact ih (h _ _ hv ⟨rfl, rfl, rfl⟩) hr₁
  | afterGather hrun _ ih =>
    cases h with
    | gather h => exact ih (h _) (hI _ _ hr (Session.extends_collectRule hrun))
  | afterOffer _ ih =>
    cases h with
    | offer h => exact ih h (hI _ _ hr .offerToken)
  | afterNote _ ih =>
    cases h with
    | note he h => exact ih h (hI _ _ hr (.note (Event.isOffer_of_isProgress he)))

end

end GrammarCompletion
