/-
# Sealed rules

Special and ignored rules are sealed while candidates are collected: a special rule is offered by its
name, an ignored one adds nothing, and neither is looked into.  Two models that differ in the bodies
of such rules only (`Model.SameUnsealed`) are therefore told apart by no part of collecting
(`Session.collectRule_sealed`), and hence by no completion with the caret at the first token.

The body of a rule is read in one place, behind the questions whether the rule is special or ignored.
That makes the two walks the same function of the run, which is proved by induction on how deep rules
may lie inside each other.
-/
import GrammarCompletion.Proofs.Trace.Faithful
import GrammarCompletion.Proofs.Variants.Models

namespace GrammarCompletion

namespace Model

/-- Two models that differ in the bodies of special and of ignored rules only. -/
structure SameUnsealed (m m' : Model) : Prop where
  rules : m'.rules.keys = m.rules.keys
  special : ∀ r, m'.isSpecial r = m.isSpecial r
  ignored : ∀ r, m'.isIgnored r = m.isIgnored r
  tokens : ∀ t, m'.isIgnoredToken t = m.isIgnoredToken t
  names : ∀ t, m'.tokenName t = m.tokenName t
  body : ∀ r, m.isSpecial r = false → m.isIgnored r = false → m'.body r = m.body r

end Model

namespace Session

variable {s : Session} {m' : Model} {collect : RuleId → Walk Phase} {d n : Nat} {rule : RuleId}
  {run : Run} {name : String}

/-! ## Collecting -/

lemma offer_sealed (h : s.model.SameUnsealed m') (t : TokenId) (k : List TokenId) :
    (s.withModel m').offer t k = s.offer t k := by
  rw [offer, offer, withModel, h.tokens]

lemma collectNodes_sealed (h : s.model.SameUnsealed m') (nodes : List (Node RuleId)) :
    (s.withModel m').collectNodes collect nodes = s.collectNodes collect nodes := by
  have hcontinuation : ∀ n rest, (s.withModel m').model.continuation n rest =
      s.model.continuation n rest := Model.continuation_congr h.tokens
  induction nodes with
  | nil => rfl
  | cons n rest ih =>
    cases hn : n.symbol with
    | token t => simp only [collectNodes, hn, offer_sealed h, hcontinuation, ih]
    | rule r => simp only [collectNodes, hn, ih]

lemma collectSequences_sealed (h : s.model.SameUnsealed m') (list : List (Sequence RuleId)) :
    (s.withModel m').collectSequences collect list = s.collectSequences collect list := by
  induction list with
  | nil => rfl
  | cons q rest ih => simp only [collectSequences, collectNodes_sealed h, ih]

lemma collectTokens_sealed (h : s.model.SameUnsealed m') (tokens : List TokenId) :
    (s.withModel m').collectTokens tokens = s.collectTokens tokens := by
  induction tokens with
  | nil => rfl
  | cons t rest ih => simp only [collectTokens, offer_sealed h, ih]

/-- A rule is collected from in the same way, whatever is inside of sealed rules. -/
lemma collectRule_sealed (h : s.model.SameUnsealed m') (d : Nat) :
    (s.withModel m').collectRule d = s.collectRule d := by
  induction d using Nat.strong_induction_on with
  | _ d ih =>
    funext rule
    rw [collectRule.eq_def, collectRule.eq_def]
    dsimp only
    have hspecial : (s.withModel m').model.isSpecial rule = s.model.isSpecial rule := h.special rule
    have hignored : (s.withModel m').model.isIgnored rule = s.model.isIgnored rule := h.ignored rule
    have hlimits : (s.withModel m').limits = s.limits := rfl
    rw [hspecial, hignored, hlimits]
    cases hs : s.model.isSpecial rule with
    | true => simp only [if_true]
    | false =>
      cases hi : s.model.isIgnored rule with
      | true => simp only [Bool.true_or, if_true]
      | false =>
        -- only here the body is read
        have hbody : (s.withModel m').model.body rule = s.model.body rule := h.body rule hs hi
        rw [hbody]
        cases d with
        | zero => simp only [collectTokens_sealed h]
        | succ d =>
          simp only [collectTokens_sealed h, collectSequences_sealed h, ih d (Nat.lt_succ_self d)]

/-- A special rule is offered, and nothing else happens. -/
lemma collectRule_of_special (hs : s.model.isSpecial rule = true) (hfuel : run.fuel = n + 1) :
    s.collectRule d rule run = .ok .matching { run with
      fuel := n
      candidates := run.candidates.offerRule rule
      events := .offerRule rule :: .collect rule :: run.events } := by
  rw [collectRule.eq_def]
  simp only [hs, if_true, Walk.burn, Bind.bind, EStateM.bind, get, getThe, MonadStateOf.get,
    EStateM.get, hfuel]
  rfl

/-! ## Completions -/

lemma walk_sealed (h : s.model.SameUnsealed m') (hreached : s.reached (s.stream.skipHidden 0) = true)
    (rule : RuleId) : (s.withModel m').walk rule = s.walk rule := by
  have hreached' : (s.withModel m').reached (s.stream.skipHidden 0) = true := hreached
  have hvisit : (s.withModel m').matchRule s.limits.depth rule (s.stream.skipHidden 0) =
      s.matchRule s.limits.depth rule (s.stream.skipHidden 0) := by
    rw [matchRule.eq_def, matchRule.eq_def]
    simp only [hreached, hreached', if_true, collectRule_sealed h]
    rfl
  exact congrFun hvisit s.start

lemma completion_sealed (h : s.model.SameUnsealed m') (o : Outcome) (c : Candidates) :
    (s.withModel m').completion o c = s.completion o c := by
  have hrender : c.render (s.withModel m').model = c.render s.model := by
    have hrules : (s.withModel m').model.ruleName = s.model.ruleName :=
      funext (Model.ruleName_eq_of_keys h.rules)
    have htokens : (s.withModel m').model.tokenName = s.model.tokenName := funext h.names
    simp only [Candidates.render, Candidates.phraseText, hrules, htokens]
  rw [completion, completion, hrender]
  rfl

/-- A completion with the caret at the first token does not depend on what is inside of sealed
rules. -/
lemma completeTraced_sealed (h : s.model.SameUnsealed m')
    (hreached : s.reached (s.stream.skipHidden 0) = true) (name : String) :
    (s.withModel m').completeTraced name = s.completeTraced name := by
  have hroot : (s.withModel m').model.ruleId? name = s.model.ruleId? name :=
    Model.ruleId?_eq_of_keys h.rules name
  rw [completeTraced, completeTraced, hroot]
  simp only [walk_sealed h hreached, completion_sealed h]

/-- A special rule that is collected from is among the candidates by its name. -/
lemma exists_name_of_special {c : Completion} (hc : s.complete name = .ok c)
    (hs : s.model.isSpecial rule = true) (hmet : .collect rule ∈ (s.completeTraced name).2) :
    ∃ text ∈ c.candidates, s.model.ruleName rule = .ok text := by
  have hoffer : .offerRule rule ∈ (s.completeTraced name).2 :=
    offerRule_mem_events_iff.2 ⟨hs, hmet⟩
  have hrender := render_events hc
  obtain ⟨text, htext⟩ := Candidates.exists_render_iff.1 ⟨_, hrender⟩ rule
    ((Candidates.reflects_ofEvents _).rules rule |>.2 hoffer)
  exact ⟨text, (Candidates.mem_render_ofEvents_iff hrender).2 (Or.inr (Or.inr ⟨rule, hoffer, htext⟩)),
    htext⟩

/-- **Special and ignored rules are sealed.**  Over two models that differ in the bodies of such rules
only, collecting from a rule and collecting from any place in a sequence do the same to every run: the
candidates, the events and the fuel that is left are the same, and so is the error if there is one.
A completion with the caret at the first token is the same, with its events.  A special rule adds its
own name: that is all that collecting from it does, and the rules that are offered in a request are
the special ones that were met, of which the answer has the names. -/
theorem sealed_rules (h : s.model.SameUnsealed m') :
    (∀ d rule run, (s.withModel m').collectRule d rule run = s.collectRule d rule run) ∧
    (∀ d (q : Sequence RuleId) i run,
      (s.withModel m').collectNodes ((s.withModel m').collectRule d) (q.nodes.drop i) run =
        s.collectNodes (s.collectRule d) (q.nodes.drop i) run) ∧
    (s.reached (s.stream.skipHidden 0) = true →
      ∀ name, (s.withModel m').completeTraced name = s.completeTraced name) ∧
    (∀ d rule run n, s.model.isSpecial rule = true → run.fuel = n + 1 →
      s.collectRule d rule run = .ok .matching { run with
        fuel := n
        candidates := run.candidates.offerRule rule
        events := .offerRule rule :: .collect rule :: run.events }) ∧
    (∀ name rule, .offerRule rule ∈ (s.completeTraced name).2 ↔
      s.model.isSpecial rule = true ∧ .collect rule ∈ (s.completeTraced name).2) ∧
    ∀ name c, s.complete name = .ok c → ∀ rule, s.model.isSpecial rule = true →
      .collect rule ∈ (s.completeTraced name).2 →
        ∃ text ∈ c.candidates, s.model.ruleName rule = .ok text := by
  refine ⟨fun d rule run => ?_, fun d q i run => ?_, completeTraced_sealed h,
    fun _ _ _ _ => collectRule_of_special, fun _ _ => offerRule_mem_events_iff,
    fun _ _ hc _ => exists_name_of_special hc⟩
  · rw [collectRule_sealed h]
  · rw [collectRule_sealed h, collectNodes_sealed h]

/-- `entry: hint? name AS`, with a special rule for names and an ignored one for hints. -/
def entries (name hint : RuleBody RuleId) : Model where
  rules := .ofList [
    ("entry", .sequences [⟨[.rule ⟨2⟩ .optional, .rule ⟨1⟩ .one, .token ⟨1⟩ .one], none⟩]),
    ("name", name), ("hint", hint)]
  specialRules := .singleton ⟨1⟩
  ignoredRules := .singleton ⟨2⟩
  tokenNames := .ofList [(⟨1⟩, "AS"), (⟨2⟩, "WORD"), (⟨3⟩, "AT")]

/-- Names and hints may be anything. -/
lemma sameUnsealed_entries (name hint name' hint' : RuleBody RuleId) :
    (entries name hint).SameUnsealed (entries name' hint') where
  rules := rfl
  special _ := rfl
  ignored _ := rfl
  tokens _ := rfl
  names _ := rfl
  body := by
    rintro ⟨_ | _ | _ | i⟩ hspecial hignored
    · rfl
    · cases hspecial
    · cases hignored
    · rfl

/-- At the start of an entry a name is offered, be it a word or nothing at all. -/
theorem sealed_rules_entries :
    let s := onLine (entries (.tokenSet (.singleton ⟨2⟩)) (.tokenSet (.singleton ⟨3⟩))) [⟨2⟩] ⟨1, 0⟩
    let m' := entries (.sequences [⟨[], none⟩]) (.sequences [⟨[.rule ⟨0⟩ .one], none⟩])
    s.model.SameUnsealed m' ∧ s.reached (s.stream.skipHidden 0) = true ∧
      s.complete "entry" = .ok ⟨["name"], false, none, 0⟩ ∧
      (s.withModel m').completeTraced "entry" = s.completeTraced "entry" := by
  intro s m'
  have hsame : s.model.SameUnsealed m' := sameUnsealed_entries _ _ _ _
  have hreached : s.reached (s.stream.skipHidden 0) = true := by decide
  have hcomplete : s.complete "entry" = .ok ⟨["name"], false, none, 0⟩ := by cbv
  exact ⟨hsame, hreached, hcomplete, (sealed_rules hsame).2.2.1 hreached "entry"⟩

end Session

end GrammarCompletion
